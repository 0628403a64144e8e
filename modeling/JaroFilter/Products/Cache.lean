import JaroFilter.Lib.Framing
import JaroFilter.Products.Emit

/-!
# The policy cache (`cache.c`, `policy.c:608-682`)

The writer of the generation's products, the validator of the cache bytes, and
the two readers that rebuild the policy and the dependency list. The cache is a
fixed header, a record count, and `M`, `D` and `R` records in that order.
-/

namespace JaroFilter

open Lib

/-! ### Dependencies -/

/-- `struct jf_dependency`: `role` and `path` are C strings, `digest` is an
array of 32 bytes. -/
structure Dependency where
  role : Bytes
  path : Bytes
  present : Bool
  digest : Bytes
  auxiliary : Bytes
  role_nul : 0 ∉ role := by decide
  path_nul : 0 ∉ path := by decide
  digest_length : digest.length = 32 := by decide
  deriving Repr

def zeroDigest : Bytes := List.replicate 32 0

def compilerId : Bytes := cstr "jaromail-filter-compiler-v2"

def addressNormalization : Bytes := cstr "mailbox-minimal-quoting-v2"

/-- `dep_compare` (`cache.c:49`). -/
def depCompare (x y : Dependency) : Ordering := (strcmp x.role y.role).then (strcmp x.path y.path)

/-- The record `dependency` (`cache.c:42`) writes. -/
def dependencyRecord (d : Dependency) : Record :=
  ⟨68, [d.role, d.path, if d.present then cstr "1" else cstr "0",
    if d.present then d.digest else [], d.auxiliary]⟩

/-! ### Buffers -/

/-- `jf_bytes_add_limit` (`product_util.c:23`). -/
def bytesAdd (limit : ℕ) (b s : Bytes) : Option Bytes :=
  if b.length ≤ limit ∧ s.length ≤ limit - b.length then some (b ++ s) else none

/-- Appends piece after piece, up to the first that does not fit. -/
def bytesAddAll (limit : ℕ) : Bytes → List Bytes → Option Bytes
  | b, [] => some b
  | b, s :: ss =>
    match bytesAdd limit b s with
    | none => none
    | some b => bytesAddAll limit b ss

/-- `jf_cache_file_size` (`product_util.c:16`) reports no failure. -/
def cacheFileSize (payload : ℕ) : Bool :=
  payload ≤ cacheMax && cacheHeaderSize ≤ cacheFileMax && payload ≤ cacheFileMax - cacheHeaderSize

def inventoryTag : Bytes := cstr "JFFP1" ++ [0]

/-! ### The writer -/

def cacheMemory : Failure := productError .eMemory 0 (cstr "cache allocation/size limit")

def orMemory {α : Type} : Option α → Except Failure α
  | none => .error cacheMemory
  | some a => .ok a

/-- `mailbox_compare` (`cache.c:76`) on pairs of mailbox and logical name. -/
def mailboxCompare (x y : Bytes × Bytes) : Ordering := (strcmp x.1 y.1).then (strcmp x.2 y.2)

/-- One mailbox for two logical names, side by side in the sorted mapping. -/
def mappingClash : List (Bytes × Bytes) → Bool
  | x :: y :: rest => (x.1 == y.1 && x.2 != y.2) || mappingClash (y :: rest)
  | _ => false

/-- The inventory loop over the sorted dependencies (`cache.c:112-117`). -/
def inventoryLoop : Option Dependency → Bytes → List Dependency → Except Failure Bytes
  | _, b, [] => .ok b
  | previous, b, d :: ds =>
    if d.role = [] ∨ (∃ x ∈ previous, depCompare x d = .eq) then
      .error (productError .eDependency 0 (cstr "empty or duplicate dependency key"))
    else do
      let b ← orMemory (bytesAdd cacheMax b (encodeRecord (dependencyRecord d)))
      inventoryLoop (some d) b ds

/-- The `M` record (`cache.c:120-123`). -/
def metaRecord (profile : Profile) (zsh sieve : Bytes) : Record :=
  ⟨77, [compilerId, profile.id.text, cstr "posix-ere-c-icase-v1", cstr "ascii-mailbox-casemap-v1",
    cstr "i;ascii-casemap", digest zsh, digest sieve]⟩

/-- The `R` record of the rule at a position (`cache.c:127-130`). -/
def ruleRecord (position : ℕ) (r : Rule) (mailbox : Bytes) : Record :=
  ⟨82, [decimalText (position + 1), decimalText r.stage, kindName r.kind, decimalText r.fields,
    r.id, r.predicate, r.logical, r.localDir, mailbox, r.source, decimalText r.line, r.action]⟩

/-- The `R` records of a list of rules with their mailboxes. -/
def ruleRecords : ℕ → List (Rule × Bytes) → List Record
  | _, [] => []
  | i, x :: xs => ruleRecord i x.1 x.2 :: ruleRecords (i + 1) xs

def cacheRecords (profile : Profile) (zsh sieve : Bytes) (sorted : List Dependency)
    (items : List (Rule × Bytes)) : List Record :=
  metaRecord profile zsh sieve :: (sorted.map dependencyRecord ++ ruleRecords 0 items)

/-- `struct jf_products`. -/
structure Products where
  zsh : Bytes
  sieve : Bytes
  cache : Bytes
  fingerprint : Bytes
  id : Bytes
  deriving DecidableEq, Repr

/-- The cache of a payload (`cache.c:132-136`). -/
def cacheBytes (fingerprint payload : Bytes) : Bytes :=
  cstr "JFNCACHE" ++ littleEndian 4 1 ++ littleEndian 4 1 ++ littleEndian 8 payload.length ++
    fingerprint ++ digest payload ++ payload

/-! ### Reading the fields -/

/-- `safe_text` (`cache.c:167`). -/
def safeText (v : Bytes) (relative : Bool) : Bool :=
  v != [] && validUtf8 v && !(relative && v.head? == some 47) && v.all (fun c => !isControl c) &&
    (!relative || componentsOk [] v)

def sizeMax : ℕ := 2 ^ 64 - 1

/-- The digit loop of `decimal`. -/
def decimalLoop : ℕ → Bytes → Option ℕ
  | n, [] => some n
  | n, c :: s =>
    if c < 48 ∨ 57 < c ∨ (sizeMax - (c.toNat - 48)) / 10 < n then none
    else decimalLoop (n * 10 + (c.toNat - 48)) s

/-- `decimal` (`cache.c:187`). -/
def decimal (v : Bytes) : Option ℕ :=
  if v = [] ∨ (1 < v.length ∧ v.head? = some 48) then none else decimalLoop 0 v

theorem decimalLoop_eq {s : Bytes} (hs : ∀ c ∈ s, 48 ≤ c ∧ c ≤ 57) {n : ℕ}
    (h : s.foldl (fun n c => n * 10 + (c.toNat - 48)) n ≤ sizeMax) :
    decimalLoop n s = some (s.foldl (fun n c => n * 10 + (c.toNat - 48)) n) := by
  induction s generalizing n with
  | nil => rfl
  | cons c s ih =>
    obtain ⟨h1, h2⟩ := hs c (by simp)
    have hgrow : ∀ (l : Bytes) (m : ℕ), m ≤ l.foldl (fun n c => n * 10 + (c.toNat - 48)) m := by
      intro l
      induction l with
      | nil => exact fun m => le_rfl
      | cons d l ihl =>
        intro m
        have hstep := ihl (m * 10 + (d.toNat - 48))
        simp only [List.foldl_cons]
        omega
    have hle := hgrow s (n * 10 + (c.toNat - 48))
    simp only [List.foldl_cons] at h ⊢
    have hlow : ¬ c < 48 := UInt8.not_lt.mpr h1
    have hhigh : ¬ 57 < c := UInt8.not_lt.mpr h2
    have hfit : ¬ (sizeMax - (c.toNat - 48)) / 10 < n := by omega
    simp only [decimalLoop, hlow, hhigh, hfit, or_self, if_false]
    exact ih (fun d hd => hs d (by simp [hd])) h

theorem decimalText_ne_nil (n : ℕ) : decimalText n ≠ [] := by
  by_cases h : n = 0
  · simp [decimalText, h]
  · simp [decimalText, h, Nat.digits_ne_nil_iff_ne_zero]

theorem decimalLoop_decimalText {n : ℕ} (h : n ≤ sizeMax) : decimalLoop 0 (decimalText n) = some n := by
  have hvalue := decimalValue_decimalText n
  unfold decimalValue at hvalue
  rw [decimalLoop_eq (decimalText_digits n) (by rw [hvalue]; exact h), hvalue]

/-- `id` (`cache.c:199`). -/
def cacheId (v : Bytes) : Bool :=
  if v = cstr "builtin:bounce" ∨ v = cstr "builtin:spam" ∨ v = cstr "builtin:unsorted" then true
  else
    let before := v.takeWhile (· != 58)
    if before.length = v.length ∨ v.length - before.length ≠ 65 then false
    else (before == cstr "r" || before == cstr "known" || before == cstr "blacklist" ||
      before == cstr "own") && (v.drop (before.length + 1)).all isLowerHex

/-! ### The validator -/

/-- The locals `jf_cache_validate` carries from record to record. -/
structure Walk where
  previousRole : Bytes := []
  previousPath : Bytes := []
  hash : Sha256
  ordinal : ℕ := 0
  priorStage : ℕ := 0
  dependencies : ℕ := 0
  phase : ℕ := 0
  fallback : ℕ := 0
  bounce : ℕ := 0
  spam : ℕ := 0
  regexProfile : Bool := false
  qualification : Bool := false
  catalogue : Bool := false
  normalization : Bool := false
  deriving DecidableEq, Repr

/-- The number of fields a tag must have (`cache.c:238`). -/
def validArity (tag : Byte) (fields : ℕ) : Bool :=
  fields == (if tag = 77 then 7 else if tag = 68 then 5 else if tag = 82 then 12 else 0) && fields != 0

/-- The fields that may not hold a NUL (`cache.c:244`). -/
def textFields (r : Record) : List Bytes :=
  if r.tag = 68 then r.fields.take 3 else if r.tag = 77 then r.fields.take 5 else r.fields

/-- An `M` record (`cache.c:247-255`); `none` is `goto bad`. -/
def validateMeta (zsh sieve : Option Bytes) (i : ℕ) (w : Walk) (f : List Bytes) : Option Walk :=
  let f5 := f.getD 5 []
  let f6 := f.getD 6 []
  if i ≠ 0 ∨ w.phase ≠ 0 ∨ f.getD 0 [] ≠ compilerId ∨
      (f.getD 1 [] ≠ ProfileId.coreV1.text ∧ f.getD 1 [] ≠ ProfileId.pigeonhole.text) ∨
      f.getD 2 [] ≠ cstr "posix-ere-c-icase-v1" ∨ f.getD 3 [] ≠ cstr "ascii-mailbox-casemap-v1" ∨
      f.getD 4 [] ≠ cstr "i;ascii-casemap" ∨ f5.length ≠ 32 ∨ f6.length ≠ 32 then none
  else if (∃ z ∈ zsh, digest z ≠ f5) ∨ (∃ s ∈ sieve, digest s ≠ f6) then none
  else some { w with phase := 1, regexProfile := f.getD 1 [] == ProfileId.pigeonhole.text }

/-- Roles whose digest is that of the auxiliary bytes (`cache.c:262-263`). -/
def selfDigested (role : Bytes) : Bool :=
  (cstr "config.").isPrefixOf role || (cstr "export.").isPrefixOf role ||
    (cstr "link.").isPrefixOf role || (cstr "inventory.").isPrefixOf role

/-- A required configuration record (`cache.c:267-278`): present, without a
path, and of the expected value when that is checked. -/
def configOk (f : List Bytes) (checked : Bool) (value : Bytes) : Bool :=
  f.getD 1 [] == [] && f.getD 2 [] == cstr "1" && (!checked || f.getD 4 [] == value)

/-- The three required configuration records of a `D` record. -/
def validateConfig (w : Walk) (f : List Bytes) : Option Walk :=
  let role := f.getD 0 []
  if role = cstr "config.address-normalization" then
    if configOk f true addressNormalization then some { w with normalization := true } else none
  else if role = cstr "config.regex-qualification" then
    if configOk f w.regexProfile regexQualification then some { w with qualification := true }
    else none
  else if role = cstr "config.regex-catalogue" then
    if configOk f w.regexProfile regexCatalogue then some { w with catalogue := true } else none
  else some w

/-- A `D` record (`cache.c:256-279`); `raw` is its bytes. -/
def validateDependency (raw : Bytes) (w : Walk) (f : List Bytes) : Option Walk :=
  let role := f.getD 0 []
  let path := f.getD 1 []
  let present := f.getD 2 [] == cstr "1"
  let absent := f.getD 2 [] == cstr "0"
  let c := strcmp w.previousRole role
  if dependencyMax < w.dependencies + 1 ∨ w.phase ≠ 1 ∨ role = [] ∨
      (w.previousRole ≠ [] ∧
        (c = .gt ∨ (c = .eq ∧ (strcmp w.previousPath path).isGE))) ∨
      ¬ ((present ∧ (f.getD 3 []).length = 32) ∨ (absent ∧ f.getD 3 [] = [])) ∨
      (absent ∧ f.getD 4 [] ≠ []) ∨
      (present ∧ selfDigested role ∧ digest (f.getD 4 []) ≠ f.getD 3 []) then none
  else
    let counted := { w with
      dependencies := w.dependencies + 1
      previousRole := role
      previousPath := path }
    (validateConfig counted f).map fun w => { w with hash := sha256Update w.hash raw }

/-- The stages and masks of address and domain rules (`cache.c:290-291`). -/
def addressPlace (stage mask : ℕ) : Bool :=
  (stage == 1 && mask == 1) || (stage == 3 && mask == 3) || (stage == 4 && mask == 12) ||
    (stage == 5 && mask == 1) || (stage == 7 && mask == 12)

def noUpper (s : Bytes) : Bool := s.all fun c => !(65 ≤ c && c ≤ 90)

/-- The predicate checks by kind (`cache.c:288-313`). -/
def validatePredicate (w : Walk) (last : Bool) (kind id p : Bytes) (stage mask : ℕ) : Option Walk :=
  if kind = cstr "address" ∨ kind = cstr "domain-apex" ∨ kind = cstr "domain-subdomains" then
    if p = [] ∨ lineMax < p.length ∨ validUtf8 p = false ∨ addressPlace stage mask = false then none
    else if kind = cstr "address" then
      if normalizeMailbox p = some p ∧ noUpper p then some w else none
    else
      let skip := if kind = cstr "domain-subdomains" then 2 else 0
      if ¬ (stage = 3 ∨ stage = 4 ∨ stage = 5) ∨ p.length ≤ skip ∨
          (skip ≠ 0 ∧ p.take 2 ≠ cstr "*.") then none
      else if validDomain (p.drop skip) ∧ noUpper (p.drop skip) then some w else none
  else if kind = cstr "ere" then
    if w.regexProfile = false ∨ w.qualification = false ∨ w.catalogue = false ∨ p = [] ∨
        lineMax < p.length ∨ ¬ ((stage = 3 ∧ mask = 3) ∨ (stage = 4 ∧ mask = 12)) ∨
        regexSupported p = false then none
    else some w
  else if kind = cstr "sender-contains" then
    if stage ≠ 2 ∨ mask ≠ 2 ∨ w.bounce ≠ 0 ∨ id ≠ cstr "builtin:bounce" ∨
        p ≠ cstr "mailman-bounce" then none
    else some { w with bounce := w.bounce + 1 }
  else if kind = cstr "spam-is" then
    if stage ≠ 6 ∨ mask ≠ 16 ∨ w.spam ≠ 0 ∨ id ≠ cstr "builtin:spam" ∨ p ≠ cstr "YES" then none
    else some { w with spam := w.spam + 1 }
  else if kind = cstr "always" then
    if stage ≠ 8 ∨ mask ≠ 0 ∨ w.fallback ≠ 0 ∨ last = false ∨ id ≠ cstr "builtin:unsorted" ∨
        p ≠ [] then none
    else some { w with fallback := w.fallback + 1 }
  else none

/-- An `R` record (`cache.c:280-314`). -/
def validateRule (last : Bool) (w : Walk) (f : List Bytes) : Option Walk :=
  match decimal (f.getD 0 []), decimal (f.getD 1 []), decimal (f.getD 3 []), decimal (f.getD 10 []) with
  | some order, some stage, some mask, some _ =>
    if w.phase = 0 ∨ order ≠ w.ordinal + 1 ∨ ruleRecordMax < w.ordinal + 1 ∨ stage < 1 ∨ 8 < stage ∨
        stage < w.priorStage ∨ cacheId (f.getD 4 []) = false ∨ safeText (f.getD 6 []) true = false ∨
        safeText (f.getD 7 []) true = false ∨ safeText (f.getD 8 []) false = false ∨
        f.getD 11 [] ≠ cstr "move" then none
    else
      validatePredicate { w with ordinal := w.ordinal + 1, phase := 2, priorStage := stage } last
        (f.getD 2 []) (f.getD 4 []) (f.getD 5 []) stage mask
  | _, _, _, _ => none

/-- One record of the loop, by its tag. -/
def validateRecord (zsh sieve : Option Bytes) (count i : ℕ) (raw : Bytes) (w : Walk) (r : Record) :
    Option Walk :=
  if (textFields r).any (fun f => f.contains 0) then none
  else if r.tag = 77 then validateMeta zsh sieve i w r.fields
  else if r.tag = 68 then validateDependency raw w r.fields
  else validateRule (i + 1 == count) w r.fields

/-- The record loop (`cache.c:231-315`): `n` records are left, `i` were read. -/
def validateLoop (zsh sieve : Option Bytes) (count : ℕ) :
    ℕ → ℕ → Walk → Bytes → Option (Walk × Bytes)
  | 0, _, w, s => some (w, s)
  | n + 1, i, w, s =>
    match readRecord validArity s with
    | none => none
    | some (r, rest) =>
      match validateRecord zsh sieve count i (s.take (s.length - rest.length)) w r with
      | none => none
      | some w => validateLoop zsh sieve count n (i + 1) w rest

/-- What must hold after the last record (`cache.c:316-318`). -/
def walkComplete (w : Walk) (rest fingerprint : Bytes) : Bool :=
  rest == [] && w.bounce == 1 && w.spam == 1 && w.fallback == 1 && w.normalization &&
    (!w.regexProfile || (w.qualification && w.catalogue)) && sha256Hex w.hash == digestHex fingerprint

def badCache : Failure :=
  ⟨5, (productError .eCache 0
    (cstr "incompatible, noncanonical or corrupt generation product")).error⟩

def startWalk : Walk := { hash := sha256Update sha256Init inventoryTag }

/-- The header checks of `jf_cache_validate` (`cache.c:225-230`). -/
def cacheHeader (data : Bytes) (fingerprint : Option Bytes) : Bool :=
  92 ≤ data.length && cacheFileSize (data.length - cacheHeaderSize) &&
    data.take 8 == cstr "JFNCACHE" && littleValue ((data.drop 8).take 4) == 1 &&
    littleValue ((data.drop 12).take 4) == 1 &&
    littleValue ((data.drop 16).take 8) == data.length - 88 &&
    (fingerprint.all fun fp => fp == (data.drop 24).take 32) &&
    digest (data.drop 88) == (data.drop 56).take 32

def recordCount (data : Bytes) : ℕ := littleValue ((data.drop 88).take 4)

/-- `jf_cache_validate` (`cache.c:212`). -/
def cacheValidate (data : Bytes) (zsh sieve fingerprint : Option Bytes) : Except Failure Unit :=
  if cacheHeader data fingerprint = false then .error badCache
  else
    let count := recordCount data
    if count < 1 + builtinRules ∨ cacheRecordMax < count then .error badCache
    else match validateLoop zsh sieve count count 0 startWalk (data.drop 92) with
      | none => .error badCache
      | some (w, rest) =>
        if walkComplete w rest ((data.drop 24).take 32) then .ok () else .error badCache

/-- `jf_products_build` (`cache.c:84`). -/
def productsBuild (p : Policy) (profile : Profile) (deps : List Dependency) :
    Except Failure Products := do
  let n := p.rules.length
  if dependencyMax < deps.length ∨ n < builtinRules ∨ ruleRecordMax < n ∨
      2 ^ 32 - 1 - n - 1 < deps.length then .error cacheMemory
  else do
    let mailboxes ← orMemory (mailboxNames profile p.rules)
    if mappingClash (qsort mailboxCompare (mailboxes.zip (p.rules.map Rule.logical))) then
      .error (productError .eMailboxMapping 0
        (cstr "different logical destinations map to the same Sieve mailbox"))
    else do
      let (zsh, sieve) ← emitText profile p.rules mailboxes
      let sorted := qsort depCompare deps
      let inventory ← inventoryLoop none inventoryTag sorted
      let records := cacheRecords profile zsh sieve sorted (p.rules.zip mailboxes)
      let payload ← orMemory (bytesAddAll cacheMax []
        (littleEndian 4 (1 + deps.length + n) :: records.map encodeRecord))
      let fingerprint := digest inventory
      if cacheFileSize payload.length then do
        let cache := cacheBytes fingerprint payload
        cacheValidate cache (some zsh) (some sieve) (some fingerprint)
        return ⟨zsh, sieve, cache, fingerprint, digestHex fingerprint⟩
      else .error cacheMemory

/-! ### The readers -/

/-- `cached_number` (`policy.c:616`), in `size_t` arithmetic. -/
def cachedNumber (s : Bytes) : ℕ := s.foldl (fun n c => (n * 10 + (c.toNat - 48)) % 2 ^ 64) 0

/-- The kind of a record's name (`policy.c:651-653`). -/
def kindOfName (name : Bytes) : Kind :=
  if name = cstr "address" then .address
  else if name = cstr "domain-apex" then .domainApex
  else if name = cstr "domain-subdomains" then .domainSubdomains
  else if name = cstr "ere" then .ere
  else if name = cstr "sender-contains" then .senderContains
  else if name = cstr "spam-is" then .spamIs
  else .always

/-- The rule of an `R` record's fields (`policy.c:646-661`). -/
def restoreRule (f : List Bytes) : Rule where
  kind := kindOfName (f.getD 2 [])
  stage := cachedNumber (f.getD 1 []) % 2 ^ 32
  fields := cachedNumber (f.getD 3 []) % 2 ^ 32
  selector := []
  predicate := f.getD 5 []
  action := cstr "move"
  logical := f.getD 6 []
  localDir := f.getD 7 []
  sieve := f.getD 8 []
  source := f.getD 9 []
  sourceIdentity := []
  line := cachedNumber (f.getD 10 [])
  occurrence := 1
  id := f.getD 4 []

/-- The entry loop of `jf_policy_restore` (`policy.c:644-676`). -/
def restoreRules (posix : Posix) : List (List Bytes) → Except Failure (List Rule)
  | [] => .ok []
  | f :: fs =>
    let r := restoreRule f
    if r.kind = .ere then
      match posix.regcomp r.predicate with
      | some e =>
        let code := if e.space then Code.eMemory else .eCache
        .error ⟨if e.space then 3 else 5, ⟨code, none, 0, cstr "cached regex compilation failed"⟩⟩
      | none => (restoreRules posix fs).map (r :: ·)
    else (restoreRules posix fs).map (r :: ·)

/-- `jf_policy_restore` (`policy.c:623`). -/
def policyRestore (posix : Posix) (records : List (List Bytes)) : Except Failure Policy :=
  if records.length < builtinRules ∨ ruleRecordMax < records.length then
    .error ((fault .eMemory "invalid cache reconstruction allocator/count").fail none 0)
  else (restoreRules posix records).map buildIndex

/-- `jf_cache_policy` (`cache.c:322`). The walk over the validated bytes has no
checks of its own; it reads past the end where `readRecords` is `none`, which
`cacheValidate_walks` excludes. -/
def cachePolicy (posix : Posix) (cache : Bytes) : Except Failure Policy := do
  cacheValidate cache none none none
  match readRecords (fun _ _ => true) (recordCount cache) (cache.drop 92) with
  | none => .error badCache
  | some (records, _) =>
    policyRestore posix ((records.filter fun r => r.tag == 82).map Record.fields)

/-- A NUL ends the C string in a buffer. -/
def cString (s : Bytes) : Bytes := s.takeWhile (· != 0)

theorem cString_nul (s : Bytes) : 0 ∉ cString s := by
  intro h
  have hne := List.mem_takeWhile_imp h
  exact absurd hne (by decide)

/-- The start of a zeroed 32-byte array overwritten. -/
def padDigest (s : Bytes) : Bytes := (s ++ zeroDigest).take 32

theorem padDigest_length (s : Bytes) : (padDigest s).length = 32 := by
  simp [padDigest, zeroDigest]

/-- The dependency of a `D` record's fields (`cache.c:378-384`). -/
def restoreDependency (f : List Bytes) : Dependency where
  role := cString (f.getD 0 [])
  path := cString (f.getD 1 [])
  present := f.getD 2 [] == cstr "1"
  digest := padDigest (f.getD 3 [])
  auxiliary := f.getD 4 []
  role_nul := cString_nul _
  path_nul := cString_nul _
  digest_length := padDigest_length _

def badDependencies : Failure := ⟨5, ⟨.eCache, none, 0, []⟩⟩

def resourceDependencies : Failure := ⟨3, ⟨.eMemory, none, 0, []⟩⟩

/-- The record loop of `jf_cache_dependencies` (`cache.c:363-386`): `n` records
are left and `count` dependencies were found. -/
def dependencyLoop : ℕ → ℕ → Bytes → Except Failure (List Dependency × Bytes)
  | 0, _, s => .ok ([], s)
  | n + 1, count, s =>
    match readRecord (fun _ fields => fields ≤ 12) s with
    | none => .error badDependencies
    | some (r, rest) =>
      if r.tag = 68 then
        if r.fields.length ≠ 5 ∨ count = dependencyMax ∨ 32 < (r.fields.getD 3 []).length then
          .error badDependencies
        else if cacheMax < (r.fields.getD 4 []).length then .error resourceDependencies
        else do
          let (ds, rest) ← dependencyLoop n (count + 1) rest
          return (restoreDependency r.fields :: ds, rest)
      else dependencyLoop n count rest

/-- `jf_cache_dependencies` (`cache.c:356`); it leaves no diagnostic. -/
def cacheDependencies (cache : Bytes) : Except Failure (List Dependency) :=
  if cache.length < 92 then .error badDependencies
  else do
    let (deps, rest) ← dependencyLoop (recordCount cache) 0 (cache.drop 92)
    if rest = [] then .ok deps else .error badDependencies

end JaroFilter
